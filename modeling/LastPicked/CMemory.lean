import Mathlib

/-! Arrays, strings and copies as the target language has them. An index of
type `int` may lie outside its array, and such an access has no result. -/

namespace LastPicked.CMemory

variable {α : Type*} {m n : Nat}

def load (xs : Vector α n) (i : Int) : Option α :=
  if h : 0 ≤ i ∧ i.toNat < n then some xs[i.toNat] else none

def store (xs : Vector α n) (i : Int) (x : α) : Option (Vector α n) :=
  if h : 0 ≤ i ∧ i.toNat < n then some (xs.set i.toNat x) else none

/-- An assignment to some fields of `xs[i]`. -/
def modify (xs : Vector α n) (i : Int) (f : α → α) : Option (Vector α n) := do
  let x ← load xs i
  store xs i (f x)

/-- `memcpy(xs + i, ys + j, count)` -/
def copy (xs : Vector α n) (i : Int) (ys : Vector α m) (j count : Int) : Option (Vector α n) :=
  if h : 0 ≤ count ∧ 0 ≤ i ∧ i + count ≤ n ∧ 0 ≤ j ∧ j + count ≤ m then
    some (Vector.ofFn fun k : Fin n =>
      if hk : i ≤ k ∧ k < i + count then ys[(k - i + j).toNat] else xs[k])
  else none

/-- `memset(xs + i, x, count)` -/
def fill (xs : Vector α n) (i count : Int) (x : α) : Option (Vector α n) :=
  if 0 ≤ count ∧ 0 ≤ i ∧ i + count ≤ n then
    some (Vector.ofFn fun k : Fin n => if i ≤ k ∧ k < i + count then x else xs[k])
  else none

/-- The index at which a search for `p` stops: the first place where it
holds, or the length when there is none. -/
def firstIndex (p : α → Option Bool) : List α → Option Nat
  | [] => some 0
  | x :: xs => do
      if ← p x then some 0 else (firstIndex p xs).map (· + 1)

structure CString where
  bytes : List UInt8
  noNul : 0 ∉ bytes
  deriving DecidableEq

/-- Whether `strcmp` of a character array and a string gives 0. Reading on
past the end of the array has no result. -/
def sameString : List UInt8 → List UInt8 → Option Bool
  | [], _ => none
  | b :: _, [] => some (b = 0)
  | b :: bs, c :: cs => if b = c then sameString bs cs else some false

theorem load_of_lt (xs : Vector α n) {k : Nat} (h : k < n) : load xs k = some xs[k] := by
  simp [load, h]

theorem store_of_lt (xs : Vector α n) {k : Nat} (h : k < n) (x : α) :
    store xs k x = some (xs.set k x) := by
  simp [store, h]

theorem load_eq_some {xs : Vector α n} {i : Int} {x : α} :
    load xs i = some x ↔ ∃ k : Nat, ∃ h : k < n, i = k ∧ xs[k] = x := by
  unfold load
  constructor
  · intro found
    split at found
    case isTrue inside => exact ⟨i.toNat, inside.2, by omega, Option.some.inj found⟩
    case isFalse => cases found
  · rintro ⟨k, h, rfl, rfl⟩
    simp [h]

theorem store_eq_some {xs ys : Vector α n} {i : Int} {x : α} :
    store xs i x = some ys ↔ ∃ k : Nat, ∃ h : k < n, i = k ∧ xs.set k x = ys := by
  unfold store
  constructor
  · intro stored
    split at stored
    case isTrue inside => exact ⟨i.toNat, inside.2, by omega, Option.some.inj stored⟩
    case isFalse => cases stored
  · rintro ⟨k, h, rfl, rfl⟩
    simp [h]

theorem modify_eq_some {xs ys : Vector α n} {i : Int} {f : α → α} :
    modify xs i f = some ys ↔ ∃ k : Nat, ∃ h : k < n, i = k ∧ xs.set k (f xs[k]) = ys := by
  simp only [modify, Option.bind_eq_bind, Option.bind_eq_some_iff, load_eq_some, store_eq_some]
  constructor
  · rintro ⟨x, ⟨k, h, rfl, rfl⟩, j, hj, same, rfl⟩
    obtain rfl : k = j := Int.ofNat_inj.mp same
    exact ⟨k, h, rfl, rfl⟩
  · rintro ⟨k, h, rfl, rfl⟩
    exact ⟨_, ⟨k, h, rfl, rfl⟩, k, h, rfl, rfl⟩

theorem modify_of_lt (xs : Vector α n) {k : Nat} (h : k < n) (f : α → α) :
    modify xs k f = some (xs.set k (f xs[k])) :=
  modify_eq_some.mpr ⟨k, h, rfl, rfl⟩

theorem copy_bounds {xs zs : Vector α n} {ys : Vector α m} {i j count : Int}
    (h : copy xs i ys j count = some zs) :
    0 ≤ count ∧ 0 ≤ i ∧ i + count ≤ n ∧ 0 ≤ j ∧ j + count ≤ m := by
  unfold copy at h
  split at h
  case isTrue bounds => exact bounds
  case isFalse => cases h

theorem copy_of_le (xs : Vector α n) (ys : Vector α m) {i j count : Nat} (hi : i + count ≤ n)
    (hj : j + count ≤ m) : ∃ zs, copy xs i ys j count = some zs ∧
      ∀ q (hq : q < n), zs[q] = if h : i ≤ q ∧ q < i + count then ys[q - i + j] else xs[q] := by
  have bounds : 0 ≤ (count : Int) ∧ 0 ≤ (i : Int) ∧ (i : Int) + count ≤ n ∧ 0 ≤ (j : Int) ∧
      (j : Int) + count ≤ m := by omega
  refine ⟨_, dif_pos bounds, fun q hq => ?_⟩
  have place (h : i ≤ q) : ((q : Int) - i + j).toNat = q - i + j := by omega
  simp only [Vector.getElem_ofFn, Fin.getElem_fin]
  by_cases inside : i ≤ q ∧ q < i + count
  · rw [dif_pos inside, dif_pos (by omega)]
    simp only [place inside.1]
  · rw [dif_neg inside, dif_neg (by omega)]

theorem fill_of_le (xs : Vector α n) {i count : Nat} (hi : i + count ≤ n) (x : α) :
    ∃ zs, fill xs i count x = some zs ∧
      ∀ q (hq : q < n), zs[q] = if i ≤ q ∧ q < i + count then x else xs[q] := by
  have bounds : 0 ≤ (count : Int) ∧ 0 ≤ (i : Int) ∧ (i : Int) + count ≤ n := by omega
  refine ⟨_, if_pos bounds, fun q hq => ?_⟩
  simp only [Vector.getElem_ofFn, Fin.getElem_fin]
  by_cases inside : i ≤ q ∧ q < i + count
  · rw [if_pos inside, if_pos (by omega)]
  · rw [if_neg inside, if_neg (by omega)]

theorem firstIndex_cons {p : α → Option Bool} {x : α} {xs : List α} {i : Nat} :
    firstIndex p (x :: xs) = some i ↔
      p x = some true ∧ i = 0 ∨
      p x = some false ∧ ∃ j, firstIndex p xs = some j ∧ i = j + 1 := by
  simp only [firstIndex, Option.bind_eq_bind, Option.bind_eq_some_iff, Bool.exists_bool]
  simp [eq_comm (b := i), or_comm]

theorem firstIndex_le {p : α → Option Bool} {xs : List α} {i : Nat} (h : firstIndex p xs = some i) :
    i ≤ xs.length := by
  induction xs generalizing i with
  | nil =>
    cases h
    exact Nat.le_refl 0
  | cons x xs ih =>
    rcases firstIndex_cons.mp h with ⟨-, rfl⟩ | ⟨-, j, later, rfl⟩
    · exact Nat.zero_le _
    · exact Nat.succ_le_succ (ih later)

theorem firstIndex_holds {p : α → Option Bool} {xs : List α} {i : Nat}
    (h : firstIndex p xs = some i) (inside : i < xs.length) : p xs[i] = some true := by
  induction xs generalizing i with
  | nil => simp at inside
  | cons x xs ih =>
    rcases firstIndex_cons.mp h with ⟨here, rfl⟩ | ⟨-, j, later, rfl⟩
    · exact here
    · exact ih later (by simpa using inside)

theorem firstIndex_before {p : α → Option Bool} {xs : List α} {i : Nat}
    (h : firstIndex p xs = some i) {j : Nat} (earlier : j < i) (inside : j < xs.length) :
    p xs[j] = some false := by
  induction xs generalizing i j with
  | nil => simp at inside
  | cons x xs ih =>
    rcases firstIndex_cons.mp h with ⟨-, rfl⟩ | ⟨other, i', later, rfl⟩
    · omega
    · cases j with
      | zero => exact other
      | succ j => exact ih later (by omega) (by simpa using inside)

theorem firstIndex_eq {p : α → Option Bool} {q : α → Bool} {xs : List α}
    (total : ∀ x ∈ xs, p x = some (q x)) : firstIndex p xs = some (xs.findIdx q) := by
  induction xs with
  | nil => rfl
  | cons x xs ih =>
    have later := ih fun y hy => total y (List.mem_cons_of_mem x hy)
    rw [firstIndex, total x List.mem_cons_self, Option.bind_eq_bind, Option.bind_some, later,
      List.findIdx_cons]
    cases q x <;> rfl

theorem sameString_head {bs cs : List UInt8} (noNul : 0 ∉ cs) (given : cs ≠ [])
    (same : sameString bs cs = some true) : bs.head? ≠ some 0 := by
  cases bs with
  | nil => cases same
  | cons b bs =>
    cases cs with
    | nil => contradiction
    | cons c cs =>
      unfold sameString at same
      grind

def stringOf (bs : List UInt8) : List UInt8 := bs.takeWhile (· ≠ 0)

theorem sameString_eq {bs cs : List UInt8} (terminated : 0 ∈ bs) (noNul : 0 ∉ cs) :
    sameString bs cs = some (decide (stringOf bs = cs)) := by
  induction bs generalizing cs with
  | nil => cases terminated
  | cons b bs ih =>
    cases cs with
    | nil => by_cases zero : b = 0 <;> simp [sameString, stringOf, zero]
    | cons c cs =>
      have other : c ≠ 0 := fun zero => noNul (by simp [zero])
      by_cases same : b = c
      · subst same
        have rest : 0 ∈ bs := (List.mem_cons.mp terminated).resolve_left other.symm
        rw [sameString, if_pos rfl, ih rest fun later => noNul (List.mem_cons_of_mem b later)]
        simp [stringOf, other]
      · by_cases zero : b = 0 <;> simp [sameString, stringOf, same, zero, other.symm]

theorem stringOf_terminated {bs : List UInt8} (noNul : 0 ∉ bs) (rest : List UInt8) :
    stringOf (bs ++ 0 :: rest) = bs := by
  rw [stringOf, List.takeWhile_append_of_pos fun b there => by
    simpa using fun zero : b = 0 => noNul (zero ▸ there)]
  simp

end LastPicked.CMemory
