import Mathlib

/-! Extents laid end to end. The rule that places each extent behind the one
before it is local, and the start of an extent as a sum of lengths, the
disjointness of the extents and the interval they cover all follow from it.
Extents may also lie with gaps between them, and be pushed together again. -/

namespace LastPicked.EndToEnd
open Finset

def Abuts (base : Int) (start len : Nat → Int) : Nat → Prop
  | 0 => start 0 = base
  | k + 1 => start (k + 1) = start k + len k

variable {base : Int} {start len : Nat → Int} {n : Nat}

theorem start_eq_sum (abut : ∀ k < n, Abuts base start len k) {k : Nat} (hk : k < n) :
    start k = base + ∑ j ∈ range k, len j := by
  induction k with
  | zero => simpa [Abuts] using abut 0 hk
  | succ k ih =>
    have before := ih (by omega)
    have here : start (k + 1) = start k + len k := abut (k + 1) hk
    rw [here, before, sum_range_succ, Int.add_assoc]

theorem finish_le_start (abut : ∀ k < n, Abuts base start len k) (nonneg : ∀ k < n, 0 ≤ len k)
    {j k : Nat} (later : j < k) (hk : k < n) : start j + len j ≤ start k := by
  induction k with
  | zero => omega
  | succ k ih =>
    have here : start (k + 1) = start k + len k := abut (k + 1) hk
    rcases Nat.lt_succ_iff_lt_or_eq.mp later with later | rfl
    · have before := ih later (by omega)
      have size := nonneg k (by omega)
      omega
    · exact here.ge

theorem disjoint (abut : ∀ k < n, Abuts base start len k) (nonneg : ∀ k < n, 0 ≤ len k)
    {j k : Nat} (hj : j < n) (hk : k < n) (other : j ≠ k) :
    Disjoint (Set.Ico (start j) (start j + len j)) (Set.Ico (start k) (start k + len k)) := by
  rw [Set.Ico_disjoint_Ico]
  rcases Nat.lt_or_gt_of_ne other with later | later
  · have apart := finish_le_start abut nonneg later hk
    exact (min_le_left _ _).trans (apart.trans (le_max_right _ _))
  · have apart := finish_le_start abut nonneg later hj
    exact (min_le_right _ _).trans (apart.trans (le_max_left _ _))

theorem cover (abut : ∀ k < n, Abuts base start len k) (nonneg : ∀ k < n, 0 ≤ len k) :
    ⋃ k < n, Set.Ico (start k) (start k + len k) =
      Set.Ico base (base + ∑ j ∈ range n, len j) := by
  induction n with
  | zero => simp
  | succ n ih =>
    have before := ih (fun k hk => abut k (by omega)) fun k hk => nonneg k (by omega)
    have total : 0 ≤ ∑ j ∈ range n, len j :=
      sum_nonneg fun j hj => nonneg j (by have := mem_range.mp hj; omega)
    have size := nonneg n (by omega)
    rw [Set.biUnion_lt_succ, before, start_eq_sum abut (by omega), sum_range_succ,
      Set.Ico_union_Ico_eq_Ico (by omega) (by omega), Int.add_assoc]

def Follows (base : Int) (start len : Nat → Int) : Nat → Prop
  | 0 => base ≤ start 0
  | k + 1 => start k + len k ≤ start (k + 1)

theorem Abuts.follows {k : Nat} (abut : Abuts base start len k) : Follows base start len k := by
  cases k with
  | zero => exact ge_of_eq abut
  | succ k => exact ge_of_eq abut

theorem sum_le_start (follow : ∀ k < n, Follows base start len k) {k : Nat} (hk : k < n) :
    base + ∑ j ∈ range k, len j ≤ start k := by
  induction k with
  | zero => simpa [Follows] using follow 0 hk
  | succ k ih =>
    have before := ih (by omega)
    have here : start k + len k ≤ start (k + 1) := follow (k + 1) hk
    rw [sum_range_succ]
    omega

theorem start_mono {start' : Nat → Int} {i : Nat} (follow : ∀ k < n, Follows base start len k)
    (same : ∀ k < i, start' k = start k) (abut : ∀ k < n, i ≤ k → Abuts base start' len k) {k : Nat}
    (hk : k < n) : start' k ≤ start k := by
  induction k with
  | zero =>
    rcases Nat.eq_zero_or_pos i with rfl | pos
    · exact (abut 0 hk (Nat.le_refl 0)).trans_le (follow 0 hk)
    · exact (same 0 pos).le
  | succ k ih =>
    rcases Nat.lt_or_ge (k + 1) i with before | behind
    · exact (same _ before).le
    · have here : start' (k + 1) = start' k + len k := abut _ hk behind
      have old : start k + len k ≤ start (k + 1) := follow (k + 1) hk
      have moved := ih (by omega)
      omega

theorem Follows.push {start' : Nat → Int} {i k : Nat} (follow : ∀ k < n, Follows base start len k)
    (same : ∀ k < i, start' k = start k) (abut : ∀ k < n, i ≤ k → Abuts base start' len k)
    (hk : k < n) :
    Follows base start' len k := by
  rcases Nat.lt_or_ge k i with before | behind
  · have old := follow k hk
    cases k with
    | zero => exact old.trans_eq (same 0 before).symm
    | succ k =>
      simp only [Follows] at old ⊢
      rw [same k (by omega), same (k + 1) before]
      exact old
  · exact (abut k hk behind).follows

end LastPicked.EndToEnd
